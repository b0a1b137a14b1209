import Mp4.Cpu.PipelineRegs

/-!
The execute stage: `alu`, `cmp`, the operand muxes of `execute` and the
`forwardingunit` that drives their selects.
-/

set_option autoImplicit false
set_option relaxedAutoImplicit false

namespace Mp4.Cpu.Execute

open Mp4.Cpu.Rv32iTypes Mp4.Cpu.PipelineRegs

/-- `alu`; shifts use `b[4:0]`. -/
def alu (aluop : AluOps) (a b : Rv32iWord) : Rv32iWord :=
  match aluop with
  | .aluAdd => a + b
  | .aluSll => a <<< b.extractLsb' 0 5
  | .aluSra => a.sshiftRight' (b.extractLsb' 0 5)
  | .aluSub => a - b
  | .aluXor => a ^^^ b
  | .aluSrl => a >>> b.extractLsb' 0 5
  | .aluOr => a ||| b
  | .aluAnd => a &&& b

/-- `cmp`; on the two codes without a case item `br_en` keeps its `held` value. -/
def cmp (held : Bool) (cmpop : Funct3) (a b : Rv32iWord) : Bool :=
  if cmpop = beq then a == b
  else if cmpop = bne then a != b
  else if cmpop = blt then a.slt b
  else if cmpop = bge then b.sle a
  else if cmpop = bltu then a.ult b
  else if cmpop = bgeu then b.ule a
  else held

structure Forward where
  alumux1Sel : Alumux1Sel
  alumux2Sel : Alumux2Sel
  cachemuxSel : CachemuxSel
  cmpmux1Sel : Cmpmux1Sel
  cmpmux2Sel : Cmpmux2Sel
  rs2passmuxSel : Rs2passmuxSel
  deriving DecidableEq, Repr

/-- `forwardingunit`; a later `if` of the source overrides an earlier one. -/
def forwardingUnit (rs1IdIdEx rs2IdIdEx rs2IdExMem rdIdMemWb rdIdExMem : Rv32iReg)
    (wordIdEx wordExMem wordMemWb : Rv32iControlWord) : Forward where
  alumux1Sel :=
    if wordMemWb.writeReg ∧ ¬(wordExMem.writeReg ∧ rdIdExMem = rs1IdIdEx) ∧
        rdIdMemWb = rs1IdIdEx ∧ rs1IdIdEx ≠ 0#5 ∧ wordIdEx.opcode ≠ opBr then .rDataMemWb1
    else if wordExMem.writeReg ∧ rdIdExMem = rs1IdIdEx ∧ rs1IdIdEx ≠ 0#5 ∧
        wordIdEx.opcode ≠ opBr then .aluOutExMem1
    else wordIdEx.alumux1Sel
  alumux2Sel :=
    if wordMemWb.writeReg ∧ ¬(wordExMem.writeReg ∧ rdIdExMem = rs2IdIdEx) ∧
        rdIdMemWb = rs2IdIdEx ∧ rs2IdIdEx ≠ 0#5 ∧ wordIdEx.opcode ≠ opBr ∧
        wordIdEx.opcode ≠ opStore then .rDataMemWb2
    else if wordExMem.writeReg ∧ rdIdExMem = rs2IdIdEx ∧ rs2IdIdEx ≠ 0#5 ∧
        wordIdEx.opcode ≠ opBr ∧ wordIdEx.opcode ≠ opStore then .aluOutExMem2
    else wordIdEx.alumux2Sel
  cachemuxSel :=
    if wordExMem.writeMem ∧ (wordMemWb.readMem ∧ wordMemWb.writeReg) ∧
        rs2IdExMem = rdIdMemWb then .rDataMemWb
    else .rs2OutExMem
  cmpmux1Sel :=
    if wordMemWb.writeReg ∧ ¬(wordExMem.writeReg ∧ rdIdExMem = rs1IdIdEx) ∧
        rdIdMemWb = rs1IdIdEx ∧ rs1IdIdEx ≠ 0#5 then .rDataMemWb1
    else if wordExMem.writeReg ∧ rdIdExMem = rs1IdIdEx ∧ rs1IdIdEx ≠ 0#5 then .aluOutExMem1
    else .rs1Out
  cmpmux2Sel :=
    if wordMemWb.writeReg ∧ ¬(wordExMem.writeReg ∧ rdIdExMem = rs2IdIdEx) ∧
        rdIdMemWb = rs2IdIdEx ∧ rs2IdIdEx ≠ 0#5 then .rDataMemWb2
    else if wordExMem.writeReg ∧ rdIdExMem = rs2IdIdEx ∧ rs2IdIdEx ≠ 0#5 then .aluOutExMem2
    else wordIdEx.cmpmux2Sel
  rs2passmuxSel :=
    if ¬(wordExMem.writeReg ∧ rdIdExMem = rs2IdIdEx) ∧ wordIdEx.opcode = opStore ∧
        rdIdMemWb = rs2IdIdEx ∧ rs2IdIdEx ≠ 0#5 then .dataFromMemwb
    else if wordExMem.writeReg ∧ wordIdEx.opcode = opStore ∧ rdIdExMem = rs2IdIdEx ∧
        rs2IdIdEx ≠ 0#5 then .dataFromExmem
    else .reg2

def noForward (word : Rv32iControlWord) : Forward where
  alumux1Sel := word.alumux1Sel
  alumux2Sel := word.alumux2Sel
  cachemuxSel := .rs2OutExMem
  cmpmux1Sel := .rs1Out
  cmpmux2Sel := word.cmpmux2Sel
  rs2passmuxSel := .reg2

def alumux1 (sel : Alumux1Sel) (q : IdEx) (fromExmem fromMemwb : Rv32iWord) : Rv32iWord :=
  match sel with
  | .rs1Out => q.reg1
  | .pcOut => q.pcReg
  | .aluOutExMem1 => fromExmem
  | .rDataMemWb1 => fromMemwb

def alumux2 (sel : Alumux2Sel) (q : IdEx) (fromExmem fromMemwb : Rv32iWord) : Rv32iWord :=
  match sel with
  | .iImm => q.iImm
  | .uImm => q.uImm
  | .bImm => q.bImm
  | .sImm => q.sImm
  | .jImm => q.jImm
  | .rs2Out => q.reg2
  | .aluOutExMem2 => fromExmem
  | .rDataMemWb2 => fromMemwb

def cmpmux1 (sel : Cmpmux1Sel) (q : IdEx) (fromExmem fromMemwb : Rv32iWord) : Rv32iWord :=
  match sel with
  | .rs1Out => q.reg1
  | .aluOutExMem1 => fromExmem
  | .rDataMemWb1 => fromMemwb

def cmpmux2 (sel : Cmpmux2Sel) (q : IdEx) (fromExmem fromMemwb : Rv32iWord) : Rv32iWord :=
  match sel with
  | .rs2Out => q.reg2
  | .aluOutExMem2 => fromExmem
  | .rDataMemWb2 => fromMemwb
  | .iImm => q.iImm

def rs2passmux (sel : Rs2passmuxSel) (q : IdEx) (fromExmem fromMemwb : Rv32iWord) : Rv32iWord :=
  match sel with
  | .reg2 => q.reg2
  | .dataFromExmem => fromExmem
  | .dataFromMemwb => fromMemwb

/-- `execute`, giving the inputs of `ex_mem`; `held` is the comparator's last output. -/
def execute (held : Bool) (sel : Forward) (q : IdEx) (fromExmem fromMemwb : Rv32iWord) :
    ExMem where
  regPc := q.pcReg
  uImm := q.uImm
  reg2 := rs2passmux sel.rs2passmuxSel q fromExmem fromMemwb
  regDest := q.regDest
  cmpVal := cmp held q.cntrlWord.cmpop (cmpmux1 sel.cmpmux1Sel q fromExmem fromMemwb)
    (cmpmux2 sel.cmpmux2Sel q fromExmem fromMemwb)
  aluVal := alu q.cntrlWord.aluop (alumux1 sel.alumux1Sel q fromExmem fromMemwb)
    (alumux2 sel.alumux2Sel q fromExmem fromMemwb)
  cntrlWord := q.cntrlWord
  funct3 := q.funct3
  opcode := q.opcode
  rs2Id := q.rs2Id
  brPredTaken := q.brPred

end Mp4.Cpu.Execute
