import Mp4.Cpu.DataInvariant
import Mp4.Lib.Bits

/-!
The unpipelined reference: one packet at a time through the same decode, execute,
memory and write-back functions, over an up-to-date register file and a flat word
memory.
-/

set_option autoImplicit false
set_option relaxedAutoImplicit false

namespace Mp4.Cpu.Unpipelined

open Mp4.Cpu.Rv32iTypes Mp4.Cpu.PipelineRegs Mp4.Cpu.InstrDecode Mp4.Cpu.Isa Mp4.Cpu.DecodeSpec
open Mp4.Cpu.Execute Mp4.Cpu.MemStage Mp4.Cpu.SingleInstruction Mp4.Cpu.Pipeline
open Mp4.Cpu.Forwarding Mp4.Cpu.DataInvariant Mp4.Lib.Bits

abbrev Mem := BitVec 30 → Rv32iWord

structure MemWrite where
  address : Rv32iWord
  byteEnable : BitVec 4
  data : Rv32iWord
  deriving DecidableEq, Repr

def readMem (mem : Mem) (address : Rv32iWord) : Rv32iWord := mem (address.extractLsb' 2 30)

def storeMem (mem : Mem) (w : MemWrite) : Mem :=
  Function.update mem (w.address.extractLsb' 2 30)
    (mergeBytes w.byteEnable w.data (readMem mem w.address))

def applyStore (mem : Mem) : Option MemWrite → Mem
  | none => mem
  | some w => storeMem mem w

theorem applyStore_twice (mem : Mem) (w : Option MemWrite) :
    applyStore (applyStore mem w) w = applyStore mem w := by
  rcases w with _ | w
  · rfl
  · simp only [applyStore, storeMem, readMem, Function.update_idem, Function.update_self,
      mergeBytes_twice]

/-- The write that EX/MEM contents ask of the data memory, nothing being forwarded. -/
def memWriteOf (held : BitVec 4) (e : ExMem) : Option MemWrite :=
  if e.cntrlWord.writeMem then
    some ⟨e.aluVal, memByteEnable held e, wdataOut .rs2OutExMem 0#32 e⟩
  else none

/-- The observable state with the sequences of writes so far, and the last outputs
of the blocks that latch. -/
structure Machine where
  regs : Regs
  mem : Mem
  regLog : List (Rv32iReg × Rv32iWord)
  memLog : List MemWrite
  heldCtrl : Rv32iControlWord
  heldBrEn : Bool
  heldByteEnable : BitVec 4

/-- One packet from decode to write-back. -/
def Machine.step (s : Machine) (p : IfId) : Machine :=
  let a := readReg s.regs (rs1Id p.instrMemRdata)
  let b := readReg s.regs (rs2Id p.instrMemRdata)
  let e := executeOnce s.heldCtrl s.heldBrEn p a b
  let m := memStage e (readMem s.mem e.aluVal)
  let w := memWriteOf s.heldByteEnable e
  { regs := regfileNext false m.cntrlWord.writeReg s.regs (regfilemuxOut m) m.regDest
    mem := applyStore s.mem w
    regLog := s.regLog ++ (regWriteOf m).toList
    memLog := s.memLog ++ w.toList
    heldCtrl := e.cntrlWord
    heldBrEn := e.cmpVal
    heldByteEnable := memByteEnable s.heldByteEnable e }

def Machine.start (core : Core) (mem : Mem) : Machine where
  regs := core.regs
  mem := mem
  regLog := []
  memLog := []
  heldCtrl := core.heldCtrl
  heldBrEn := core.heldBrEn
  heldByteEnable := core.heldByteEnable

theorem storeKind {c : Core} {o : Option IfId} (h : InExMem c o)
    (writeMem : c.exMem.cntrlWord.writeMem = true) :
    c.exMem.opcode = opStore ∧
      (c.exMem.funct3 = sb ∨ c.exMem.funct3 = sh ∨ c.exMem.funct3 = sw) := by
  cases h with
  | bubble idle => simp [idle.writeMem] at writeMem
  | packet enc agrees =>
    rw [agrees.cntrlWord, executeOnce_encodes enc] at writeMem
    rw [agrees.opcode, agrees.funct3, executeOnce_encodes enc]
    cases enc with
    | store op kind =>
      refine ⟨rfl, ?_⟩
      unfold StoreOp.ofFunct3 at kind
      split_ifs at kind with h0 h1 h2
      · exact .inl h0
      · exact .inr (.inl h1)
      · exact .inr (.inr h2)
    | _ => cases writeMem

def memWrite (c : Core) : Option MemWrite :=
  if c.exMem.cntrlWord.writeMem then some ⟨c.exMem.aluVal, c.byteEnable, c.wdata⟩ else none

theorem memWrite_eq {c : Core} {o : Option IfId} (h : InExMem c o) (held : BitVec 4) :
    memWrite c = memWriteOf held c.exMem := by
  by_cases writeMem : c.exMem.cntrlWord.writeMem = true
  · obtain ⟨op, kind⟩ := storeKind h writeMem
    rw [memWrite, memWriteOf, if_pos writeMem, if_pos writeMem]
    rcases kind with kind | kind | kind <;>
      simp [memByteEnable, Core.byteEnable, Core.wdata, wdataOut, op, kind]
  · rw [memWrite, memWriteOf, if_neg writeMem, if_neg writeMem]

theorem memWrite_agrees {c : Core} {o : Option IfId} {r : ExMem} (h : InExMem c o)
    (agrees : Agrees c.exMem r) (held : BitVec 4) : memWrite c = memWriteOf held r := by
  rw [memWrite_eq h held]
  by_cases writeMem : c.exMem.cntrlWord.writeMem = true
  · have store := (storeKind h writeMem).1
    rw [memWriteOf, memWriteOf, if_pos writeMem, if_pos (agrees.cntrlWord ▸ writeMem),
      agrees.wdataOut_eq store, agrees.memByteEnable_eq, agrees.aluVal]
  · rw [memWriteOf, memWriteOf, if_neg writeMem, if_neg (agrees.cntrlWord ▸ writeMem)]

theorem regWriteOf_store {c : Core} {o : Option IfId} (h : InExMem c o) (rData : Rv32iWord)
    (writeMem : c.exMem.cntrlWord.writeMem = true) :
    regWriteOf (memStage c.exMem rData) = none := by
  cases h with
  | bubble idle => simp [idle.writeMem] at writeMem
  | packet enc agrees =>
    refine regWriteOf_false ?_
    rw [agrees.cntrlWord, executeOnce_encodes enc] at writeMem
    change c.exMem.cntrlWord.writeReg = false
    rw [agrees.cntrlWord, executeOnce_encodes enc]
    cases enc with
    | store op kind => rfl
    | _ => cases writeMem

end Mp4.Cpu.Unpipelined
