import Mp4.Cpu.InstrDecode
import Mp4.Cpu.Execute
import Mp4.Cpu.MemStage

/-!
The stages from IF/ID to write-back, connected by port name. One step is one
clock edge; the packet offered to IF/ID, the flush and the two cache-miss signals
are inputs, so that different surroundings can be attached.
-/

set_option autoImplicit false
set_option relaxedAutoImplicit false

namespace Mp4.Cpu.Pipeline

open Mp4.Cpu.Rv32iTypes Mp4.Cpu.PipelineRegs Mp4.Cpu.InstrDecode
open Mp4.Cpu.Execute Mp4.Cpu.MemStage

/-- The clocked registers, and the last outputs of the blocks that latch. -/
structure Core where
  ifId : IfId
  idEx : IdEx
  exMem : ExMem
  memWb : MemWb
  regs : Regs
  heldCtrl : Rv32iControlWord
  heldBrEn : Bool
  heldChecker : Checker
  heldByteEnable : BitVec 4

structure CoreIn where
  rst : Bool
  flush : Bool
  iCacheMiss : Bool
  dCacheMiss : Bool
  fetched : IfId
  dCacheRdata : Rv32iWord

namespace Core

def regfilemux (c : Core) : Rv32iWord := regfilemuxOut c.memWb

def readPort (c : Core) (src : Rv32iReg) : Rv32iWord :=
  regfileRead c.regs c.regfilemux c.memWb.regDest src

def decoded (c : Core) : IdEx :=
  instrDecode c.heldCtrl c.ifId (c.readPort (rs1Id c.ifId.instrMemRdata))
    (c.readPort (rs2Id c.ifId.instrMemRdata))

def hazards (c : Core) (iCacheMiss dCacheMiss : Bool) : Stall :=
  stall iCacheMiss dCacheMiss c.idEx.regDest c.idEx.cntrlWord.readMem
    (rs1Id c.ifId.instrMemRdata) (rs2Id c.ifId.instrMemRdata)

def forward (c : Core) : Forward :=
  forwardingUnit c.idEx.rs1Id c.idEx.rs2Id c.exMem.rs2Id c.memWb.regDest c.exMem.regDest
    c.idEx.cntrlWord c.exMem.cntrlWord c.memWb.cntrlWord

def executed (c : Core) : ExMem :=
  execute c.heldBrEn c.forward c.idEx (forwardingVal c.exMem) c.regfilemux

def checker (c : Core) : Checker :=
  staticNtPredictor c.heldChecker c.exMem.cmpVal c.exMem.opcode c.exMem.brPredTaken

def byteEnable (c : Core) : BitVec 4 := memByteEnable c.heldByteEnable c.exMem

def wdata (c : Core) : Rv32iWord := wdataOut c.forward.cachemuxSel c.regfilemux c.exMem

def next (i : CoreIn) (c : Core) : Core :=
  let s := c.hazards i.iCacheMiss i.dCacheMiss
  { ifId := PipelineRegs.ifId i.rst s.stallIfId i.flush i.fetched c.ifId
    idEx := PipelineRegs.idEx i.rst s.stallIdEx i.flush s.stallNopIdEx c.decoded c.idEx
    exMem := PipelineRegs.exMem i.rst s.stallExMem i.flush c.executed c.exMem
    memWb := PipelineRegs.memWb i.rst s.stallMemWb (memStage c.exMem i.dCacheRdata) c.memWb
    regs := regfileNext i.rst c.memWb.cntrlWord.writeReg c.regs c.regfilemux c.memWb.regDest
    heldCtrl := c.decoded.cntrlWord
    heldBrEn := c.executed.cmpVal
    heldChecker := c.checker
    heldByteEnable := c.byteEnable }

def loadUse (c : Core) : Bool :=
  InstrDecode.loadUse c.idEx.regDest c.idEx.cntrlWord.readMem (rs1Id c.ifId.instrMemRdata)
    (rs2Id c.ifId.instrMemRdata)

end Core

/-- Which fetched packet each register holds; `none` is a bubble. This records what
the registers do and drives nothing. -/
structure Tags where
  ifId : Option IfId
  idEx : Option IfId
  exMem : Option IfId

namespace Tags

def empty : Tags := ⟨none, none, none⟩

/-- The packets after a clock edge, moved by the signals that move the registers;
`offered` is the packet that the fetched one stands for. -/
def next (i : CoreIn) (c : Core) (offered : Option IfId) (t : Tags) : Tags :=
  let s := c.hazards i.iCacheMiss i.dCacheMiss
  { ifId :=
      if i.rst || i.flush then none else if !s.stallIfId then offered else t.ifId
    idEx :=
      if i.rst || i.flush || s.stallNopIdEx then none
      else if !s.stallIdEx then t.ifId else t.idEx
    exMem :=
      if i.rst then none
      else if i.flush then (if s.stallExMem then t.exMem else none)
      else if !s.stallExMem then t.idEx else t.exMem }

end Tags

/-- The packet that passes from EX/MEM into MEM/WB in a cycle. -/
def leaving (i : CoreIn) (c : Core) (t : Tags) : Option IfId :=
  if i.rst || (c.hazards i.iCacheMiss i.dCacheMiss).stallMemWb then none else t.exMem

def CoreIn.frozen (i : CoreIn) : Bool := i.iCacheMiss || i.dCacheMiss

section Step

variable {i : CoreIn} {c : Core} {t : Tags}

private theorem hazards_eq (c : Core) (iMiss dMiss : Bool) :
    c.hazards iMiss dMiss =
      if iMiss || dMiss then ⟨true, true, true, true, true, false, false⟩
      else if c.loadUse then ⟨true, true, true, false, false, false, true⟩
      else ⟨false, false, false, false, false, false, false⟩ := by
  unfold Core.hazards stall Core.loadUse
  cases iMiss <;> cases dMiss <;> rfl

theorem pcStall_eq (i : CoreIn) (c : Core) :
    (c.hazards i.iCacheMiss i.dCacheMiss).pcStall = (i.frozen || c.loadUse) := by
  rw [hazards_eq]
  cases h : i.frozen <;> cases c.loadUse <;> simp_all [CoreIn.frozen]

theorem stallIfId_eq (i : CoreIn) (c : Core) :
    (c.hazards i.iCacheMiss i.dCacheMiss).stallIfId = (i.frozen || c.loadUse) := by
  rw [hazards_eq]
  cases h : i.frozen <;> cases c.loadUse <;> simp_all [CoreIn.frozen]

theorem stallExMem_eq (i : CoreIn) (c : Core) :
    (c.hazards i.iCacheMiss i.dCacheMiss).stallExMem = i.frozen := by
  rw [hazards_eq]
  cases h : i.frozen <;> cases c.loadUse <;> simp_all [CoreIn.frozen]

theorem stallMemWb_eq (i : CoreIn) (c : Core) :
    (c.hazards i.iCacheMiss i.dCacheMiss).stallMemWb = i.frozen := by
  rw [hazards_eq]
  cases h : i.frozen <;> cases c.loadUse <;> simp_all [CoreIn.frozen]

theorem reset_ifId (rst : i.rst = true) (c : Core) :
    (c.next i).ifId = ⟨0#32, nopWord, false, 0#32⟩ := by
  simp [Core.next, ifId, rst]

theorem reset_idEx (rst : i.rst = true) (c : Core) :
    (c.next i).idEx =
      clearedIdEx zeroControlWord (opcodeOf c.ifId.instrMemRdata) false 0#32 := by
  simp only [Core.next, idEx, rst, if_true]
  rfl

theorem reset_exMem (rst : i.rst = true) (c : Core) :
    (c.next i).exMem = clearedExMem c.idEx.opcode := by
  simp only [Core.next, exMem, rst, if_true]
  rfl

theorem reset_memWb (rst : i.rst = true) (c : Core) : (c.next i).memWb.regDest = 0#5 := by
  simp [Core.next, memWb, rst]

/-- What `n` cycles of reset have settled; the opcodes of ID/EX and EX/MEM are loaded
from their inputs and need one cycle more each. -/
structure ResetFor (n : Nat) (c : Core) : Prop where
  first : 1 ≤ n → c.regs = (fun _ => 0#32) ∧ c.memWb.regDest = 0#5 ∧
    c.ifId.instrMemRdata = nopWord
  second : 2 ≤ n → c.idEx = clearedIdEx zeroControlWord 0x13#7 false 0#32
  third : 3 ≤ n → c.exMem = clearedExMem 0x13#7

theorem resetFor_next {n : Nat} (h : ResetFor n c) (rst : i.rst = true) :
    ResetFor (n + 1) (c.next i) := by
  refine ⟨fun _ => ⟨?_, reset_memWb rst c, ?_⟩, fun two => ?_, fun three => ?_⟩
  · simp only [Core.next, regfileNext, rst, if_true]
  · rw [reset_ifId rst]
  · have nop := (h.first (by omega)).2.2
    rw [reset_idEx rst, nop]
    rfl
  · rw [reset_exMem rst, h.second (by omega)]
    rfl

theorem next_regs (running : i.rst = false) :
    (c.next i).regs =
      regfileNext false c.memWb.cntrlWord.writeReg c.regs c.regfilemux c.memWb.regDest := by
  simp only [Core.next, running]

theorem next_memWb (running : i.rst = false) :
    (c.next i).memWb = if i.frozen then c.memWb else memStage c.exMem i.dCacheRdata := by
  simp only [Core.next, hazards_eq, running, memWb]
  cases h : i.frozen <;> cases c.loadUse <;> simp_all [CoreIn.frozen]

theorem next_exMem (running : i.rst = false) :
    (c.next i).exMem =
      if i.frozen then c.exMem else if i.flush then clearedExMem 0x13#7 else c.executed := by
  simp only [Core.next, hazards_eq, running, exMem]
  cases h : i.frozen <;> cases c.loadUse <;> cases i.flush <;> simp_all [CoreIn.frozen]

theorem next_idEx (running : i.rst = false) :
    (c.next i).idEx =
      if i.flush then clearedIdEx zeroControlWord 0x13#7 c.idEx.brPred c.idEx.brPredPc
      else if i.frozen then c.idEx
      else if c.loadUse then clearedIdEx nopControlWord 0x13#7 false 0#32
      else c.decoded := by
  simp only [Core.next, hazards_eq, running, idEx]
  cases h : i.frozen <;> cases c.loadUse <;> cases i.flush <;> simp_all [CoreIn.frozen]

theorem next_ifId (running : i.rst = false) :
    (c.next i).ifId =
      if i.flush then ⟨c.ifId.pcReg, nopWord, false, 0#32⟩
      else if i.frozen || c.loadUse then c.ifId
      else i.fetched := by
  simp only [Core.next, hazards_eq, running, ifId]
  cases h : i.frozen <;> cases c.loadUse <;> cases i.flush <;> simp_all [CoreIn.frozen]

theorem next_tags (offered : Option IfId) (running : i.rst = false) :
    t.next i c offered =
      { ifId := if i.flush then none else if i.frozen || c.loadUse then t.ifId else offered
        idEx := if i.flush then none else if i.frozen then t.idEx
          else if c.loadUse then none else t.ifId
        exMem := if i.frozen then t.exMem else if i.flush then none else t.idEx } := by
  simp only [Tags.next, hazards_eq, running]
  cases h : i.frozen <;> cases c.loadUse <;> cases i.flush <;> simp_all [CoreIn.frozen]

theorem leaving_eq (running : i.rst = false) :
    leaving i c t = if i.frozen then none else t.exMem := by
  simp only [leaving, hazards_eq, running]
  cases h : i.frozen <;> cases c.loadUse <;> simp_all [CoreIn.frozen]

end Step

end Mp4.Cpu.Pipeline
