import Mp4.Cpu.Rv32iTypes

/-!
The four pipeline registers. Each function gives the contents after a clock edge
from the inputs and the contents before it, in the priority order of the source.
-/

set_option autoImplicit false
set_option relaxedAutoImplicit false

namespace Mp4.Cpu.PipelineRegs

open Mp4.Cpu.Rv32iTypes

structure IfId where
  pcReg : Rv32iWord
  instrMemRdata : Rv32iWord
  brPredTaken : Bool
  brPredPc : Rv32iWord

/-- `if_id`; a flush keeps the program counter and wins over a stall. -/
def ifId (rst stall flush : Bool) (input q : IfId) : IfId :=
  if rst then ⟨0#32, nopWord, false, 0#32⟩
  else if flush || (flush && stall) then
    { q with instrMemRdata := nopWord, brPredTaken := false, brPredPc := 0#32 }
  else if !stall then input
  else q

structure IdEx where
  pcReg : Rv32iWord
  reg1 : Rv32iWord
  reg2 : Rv32iWord
  regDest : Rv32iReg
  cntrlWord : Rv32iControlWord
  funct3 : Funct3
  iImm : Rv32iWord
  sImm : Rv32iWord
  bImm : Rv32iWord
  uImm : Rv32iWord
  jImm : Rv32iWord
  rs1Id : Rv32iReg
  rs2Id : Rv32iReg
  brPred : Bool
  brPredPc : Rv32iWord
  opcode : Rv32iOpcode

def clearedIdEx (cntrlWord : Rv32iControlWord) (opcode : Rv32iOpcode) (brPred : Bool)
    (brPredPc : Rv32iWord) : IdEx where
  pcReg := 0#32
  reg1 := 0#32
  reg2 := 0#32
  regDest := 0#5
  cntrlWord := cntrlWord
  funct3 := 0#3
  iImm := 0#32
  sImm := 0#32
  bImm := 0#32
  uImm := 0#32
  jImm := 0#32
  rs1Id := 0#5
  rs2Id := 0#5
  brPred := brPred
  brPredPc := brPredPc
  opcode := opcode

/-- `id_ex`. Reset loads the opcode from the input; the flush branch assigns the
control word twice, the zero word last, and leaves the prediction alone. -/
def idEx (rst stall flush stallNop : Bool) (input q : IdEx) : IdEx :=
  if rst then clearedIdEx zeroControlWord input.opcode false 0#32
  else if flush then clearedIdEx zeroControlWord 0x13#7 q.brPred q.brPredPc
  else if stallNop then clearedIdEx nopControlWord 0x13#7 false 0#32
  else if !stall then input
  else q

structure ExMem where
  regPc : Rv32iWord
  uImm : Rv32iWord
  reg2 : Rv32iWord
  regDest : Rv32iReg
  cmpVal : Bool
  aluVal : Rv32iWord
  cntrlWord : Rv32iControlWord
  funct3 : Funct3
  opcode : Rv32iOpcode
  rs2Id : Rv32iReg
  brPredTaken : Bool

def clearedExMem (opcode : Rv32iOpcode) : ExMem where
  regPc := 0#32
  uImm := 0#32
  reg2 := 0#32
  regDest := 0#5
  cmpVal := false
  aluVal := 0#32
  cntrlWord := nopControlWord
  funct3 := 0#3
  opcode := opcode
  rs2Id := 0#5
  brPredTaken := false

/-- `ex_mem`; while stalled, a flush keeps the instruction that asked for it. -/
def exMem (rst stall flush : Bool) (input q : ExMem) : ExMem :=
  if rst then clearedExMem input.opcode
  else if flush then (if stall then q else clearedExMem 0x13#7)
  else if !stall then input
  else q

structure MemWb where
  uImm : Rv32iWord
  regDest : Rv32iReg
  regPc : Rv32iWord
  aluVal : Rv32iWord
  cmpVal : Bool
  cntrlWord : Rv32iControlWord
  rData : Rv32iWord
  opcode : Rv32iOpcode

def memWb (rst stall : Bool) (input q : MemWb) : MemWb :=
  if rst then
    { uImm := 0#32, regDest := 0#5, regPc := 0#32, aluVal := 0#32, cmpVal := false,
      cntrlWord := zeroControlWord, rData := 0#32, opcode := input.opcode }
  else if !stall then input
  else q

end Mp4.Cpu.PipelineRegs
