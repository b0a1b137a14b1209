import Mathlib.Data.List.Basic

/-!
The packages `rv32i_types` and the mux packages. An enumeration whose variables
only ever hold its members is an inductive type; opcodes and branch functions
are cast from arbitrary instruction bits and stay bit vectors.
-/

set_option autoImplicit false
set_option relaxedAutoImplicit false

namespace Mp4.Cpu.Rv32iTypes

abbrev Rv32iWord := BitVec 32
abbrev Rv32iReg := BitVec 5
abbrev Rv32iOpcode := BitVec 7
abbrev Funct3 := BitVec 3

abbrev opLui : Rv32iOpcode := 0b0110111#7
abbrev opAuipc : Rv32iOpcode := 0b0010111#7
abbrev opJal : Rv32iOpcode := 0b1101111#7
abbrev opJalr : Rv32iOpcode := 0b1100111#7
abbrev opBr : Rv32iOpcode := 0b1100011#7
abbrev opLoad : Rv32iOpcode := 0b0000011#7
abbrev opStore : Rv32iOpcode := 0b0100011#7
abbrev opImm : Rv32iOpcode := 0b0010011#7
abbrev opReg : Rv32iOpcode := 0b0110011#7

/-- `branch_funct3_t`; the codes 2 and 3 are not members. -/
abbrev beq : Funct3 := 0b000#3
abbrev bne : Funct3 := 0b001#3
abbrev blt : Funct3 := 0b100#3
abbrev bge : Funct3 := 0b101#3
abbrev bltu : Funct3 := 0b110#3
abbrev bgeu : Funct3 := 0b111#3

/-- `load_funct3_t`. -/
abbrev lb : Funct3 := 0b000#3
abbrev lh : Funct3 := 0b001#3
abbrev lw : Funct3 := 0b010#3
abbrev lbu : Funct3 := 0b100#3
abbrev lhu : Funct3 := 0b101#3

/-- `store_funct3_t`. -/
abbrev sb : Funct3 := 0b000#3
abbrev sh : Funct3 := 0b001#3
abbrev sw : Funct3 := 0b010#3

/-- `arith_funct3_t`. -/
abbrev add : Funct3 := 0b000#3
abbrev sll : Funct3 := 0b001#3
abbrev slt : Funct3 := 0b010#3
abbrev sltu : Funct3 := 0b011#3
abbrev axor : Funct3 := 0b100#3
abbrev sr : Funct3 := 0b101#3
abbrev aor : Funct3 := 0b110#3
abbrev aand : Funct3 := 0b111#3

def repl (n : Nat) (b : Bool) : BitVec n := if b then BitVec.allOnes n else 0#n

@[simp, grind =] theorem getElem_repl (n : Nat) (b : Bool) (i : Nat) (hi : i < n) :
    (repl n b)[i] = b := by
  cases b <;> simp [repl]

inductive AluOps
  | aluAdd | aluSll | aluSra | aluSub | aluXor | aluSrl | aluOr | aluAnd
  deriving DecidableEq, Repr

/-- The cast `alu_ops'(funct3)`. -/
def AluOps.ofBits (b : Funct3) : AluOps :=
  if b = 0b000#3 then .aluAdd
  else if b = 0b001#3 then .aluSll
  else if b = 0b010#3 then .aluSra
  else if b = 0b011#3 then .aluSub
  else if b = 0b100#3 then .aluXor
  else if b = 0b101#3 then .aluSrl
  else if b = 0b110#3 then .aluOr
  else .aluAnd

inductive PcmuxSel
  | pcPlus4 | aluOut | aluMod2 | cmpOut
  deriving DecidableEq, Repr

inductive Cmpmux1Sel
  | rs1Out | aluOutExMem1 | rDataMemWb1
  deriving DecidableEq, Repr

inductive Cmpmux2Sel
  | rs2Out | iImm | aluOutExMem2 | rDataMemWb2
  deriving DecidableEq, Repr

inductive Alumux1Sel
  | rs1Out | pcOut | aluOutExMem1 | rDataMemWb1
  deriving DecidableEq, Repr

inductive Alumux2Sel
  | iImm | uImm | bImm | sImm | jImm | rs2Out | aluOutExMem2 | rDataMemWb2
  deriving DecidableEq, Repr

inductive RegfilemuxSel
  | aluOut | brEn | uImm | lw | pcPlus4 | lb | lbu | lh | lhu
  deriving DecidableEq, Repr

inductive CachemuxSel
  | rDataMemWb | rs2OutExMem
  deriving DecidableEq, Repr

/-- The select `forwarding_rs2_pass_sel`, whose code `2'b11` is never driven. -/
inductive Rs2passmuxSel
  | reg2 | dataFromExmem | dataFromMemwb
  deriving DecidableEq, Repr

/-- `rv32i_control_word`. -/
structure Rv32iControlWord where
  aluop : AluOps
  cmpop : Funct3
  cmpmux2Sel : Cmpmux2Sel
  alumux1Sel : Alumux1Sel
  alumux2Sel : Alumux2Sel
  regfilemuxSel : RegfilemuxSel
  pcmuxSel : PcmuxSel
  readMem : Bool
  writeMem : Bool
  writeReg : Bool
  opcode : Rv32iOpcode
  deriving DecidableEq, Repr

def zeroControlWord : Rv32iControlWord where
  aluop := .aluAdd
  cmpop := beq
  cmpmux2Sel := .rs2Out
  alumux1Sel := .rs1Out
  alumux2Sel := .iImm
  regfilemuxSel := .aluOut
  pcmuxSel := .pcPlus4
  readMem := false
  writeMem := false
  writeReg := false
  opcode := 0#7

/-- The 28-bit bubble literal ending in `1'b1, 7'h13`, zero-extended to the
29 bits of the control word. -/
def nopControlWord : Rv32iControlWord :=
  { zeroControlWord with writeReg := true, opcode := 0x13#7 }

/-- The no-op `{12'b0, 5'b0, 3'b0, 5'b0, 7'h13}` that a flush puts into IF/ID. -/
abbrev nopWord : Rv32iWord := 0x00000013#32

end Mp4.Cpu.Rv32iTypes
