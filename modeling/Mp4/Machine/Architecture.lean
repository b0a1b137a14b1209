import Mp4.Cpu.ControlFlow
import Mp4.Cpu.Unpipelined
import Mp4.Lib.ByteMemory
import Mp4.Memory.SubWord

/-!
The RV32I machine that the processor is meant to be: a program counter, registers and a
memory of bytes, one instruction at a time. Its memory is related to the memory of words on
the data port, and its instructions to the contents of EX/MEM.
-/

set_option autoImplicit false
set_option relaxedAutoImplicit false

namespace Mp4.Machine.Architecture

open Mp4.Cpu.Rv32iTypes Mp4.Cpu.PipelineRegs Mp4.Cpu.InstrDecode Mp4.Cpu.Isa
open Mp4.Cpu.DecodeSpec Mp4.Cpu.MemStage Mp4.Cpu.SingleInstruction Mp4.Cpu.StoreLanes
open Mp4.Cpu.Unpipelined Mp4.Cpu.ControlFlow Mp4.Lib.Bits Mp4.Lib.ByteMemory
open Mp4.Memory.SubWord

/-- The state between two instructions. -/
structure Hart where
  pc : Rv32iWord
  regs : Regs
  mem : Bytes 30

namespace Hart

variable (s : Hart)

def fetch : Rv32iWord := loadBytes s.mem s.pc 4

def operand1 (i : Instr) : Rv32iWord := readReg s.regs (source1 i)

def operand2 (i : Instr) : Rv32iWord := readReg s.regs (source2 i)

def result (i : Instr) : Option (Rv32iReg × Rv32iWord) :=
  match i with
  | .load op rd _ imm =>
      writeTo rd (extend op (loadBytes s.mem (s.operand1 i + imm) op.size))
  | _ => i.regWrite s.pc (s.operand1 i) (s.operand2 i) 0#32

def stored (i : Instr) : Bytes 30 :=
  match i with
  | .store op _ _ imm => storeBytes s.mem (s.operand1 i + imm) op.size (s.operand2 i)
  | _ => s.mem

def step : Hart :=
  match decode s.fetch with
  | none => s
  | some i =>
      { pc := i.successor s.pc (s.operand1 i) (s.operand2 i)
        regs := applyWrite s.regs (s.result i)
        mem := s.stored i }

def Aligned (i : Instr) : Prop :=
  match i with
  | .load op _ _ imm => op.size ∣ (s.operand1 i + imm).toNat
  | .store op _ _ imm => op.size ∣ (s.operand1 i + imm).toNat
  | _ => True

instance (i : Instr) : Decidable (s.Aligned i) := by
  unfold Aligned
  cases i <;> infer_instance

/-- The next instruction is a supported one and raises no exception. -/
structure Legal : Prop where
  fetchAligned : 4 ∣ s.pc.toNat
  decodes : ∃ i, decode s.fetch = some i ∧ s.Aligned i

def arch : Arch := ⟨s.pc, s.regs⟩

/-- Whether the next instruction leaves the path that was predicted for a packet. -/
def redirects (p : IfId) : Bool :=
  (decode s.fetch).any fun i => i.redirects p.brPredTaken (s.operand1 i) (s.operand2 i)

end Hart

/-- The state after `n` instructions. -/
def trace (s : Hart) : Nat → Hart
  | 0 => s
  | n + 1 => (trace s n).step

def boot (image : Bytes 30) : Hart := ⟨0x60#32, fun _ => 0#32, image⟩

section Words

private theorem LoadOp.size_fits (op : LoadOp) : op.size ∣ 4 := by
  cases op <;> decide

theorem StoreOp.size_fits (op : StoreOp) : op.size ∣ 4 := by
  cases op <;> decide

def wordAt (mem : Bytes 30) (address : Rv32iWord) : Rv32iWord := readMem (wordsOf mem) address

theorem fetch_eq {s : Hart} (aligned : 4 ∣ s.pc.toNat) : s.fetch = wordAt s.mem s.pc := by
  have bytes : loadBytes s.mem s.pc 4 = _ := loadBytes_aligned (Nat.dvd_refl 4) aligned
  rw [Nat.mod_eq_zero_of_dvd aligned] at bytes
  rw [Hart.fetch, bytes]
  ext i hi
  simp only [Nat.mul_zero, BitVec.getElem_extractLsb', Nat.zero_add]
  exact BitVec.getLsbD_eq_getElem hi

theorem value_wordAt {op : LoadOp} {mem : Bytes 30} {address : Rv32iWord}
    (aligned : op.size ∣ address.toNat) :
    op.value address (wordAt mem address) = extend op (loadBytes mem address op.size) := by
  have bytes : loadBytes mem address op.size = _ := loadBytes_aligned (LoadOp.size_fits op) aligned
  have word : wordAt mem address = wordsOf mem (wordAddress address) := rfl
  rw [bytes, word]
  generalize wordsOf mem (wordAddress address) = x
  cases op with
  | lw =>
    have base : address.toNat % 4 = 0 := Nat.mod_eq_zero_of_dvd aligned
    rw [base]
    show x = (x.extractLsb' 0 32).setWidth 32
    ext i hi
    grind
  | lb | lbu | lh | lhu =>
    simp only [LoadOp.value, LoadOp.bit_of_aligned aligned]
    rfl

end Words

section Retire

variable {s : Hart} {i : Instr} {held : Rv32iControlWord} {heldCmp : Bool} {p : IfId}

theorem step_of_decode (dec : decode s.fetch = some i) : s.step =
    { pc := i.successor s.pc (s.operand1 i) (s.operand2 i)
      regs := applyWrite s.regs (s.result i)
      mem := s.stored i } := by
  rw [Hart.step, dec]

theorem redirects_of_decode (dec : decode s.fetch = some i) :
    s.redirects p = i.redirects p.brPredTaken (s.operand1 i) (s.operand2 i) := by
  rw [Hart.redirects, dec]
  rfl

theorem regWrite_eq (aligned : s.Aligned i) {word : Rv32iWord}
    (loaded : ∀ op rd rs1 imm, i = .load op rd rs1 imm →
      word = wordAt s.mem (s.operand1 i + imm)) :
    i.regWrite s.pc (s.operand1 i) (s.operand2 i) word = s.result i := by
  cases i with
  | load op rd rs1 imm =>
    have here := @value_wordAt op s.mem _ aligned
    rw [loaded op rd rs1 imm rfl, Hart.result]
    simp only [Instr.regWrite]
    rw [here]
  | lui _ _ | auipc _ _ | jal _ _ | jalr _ _ _ | branch _ _ _ _ | store _ _ _ _
  | arithImm _ _ _ _ | arith _ _ _ _ => rfl

theorem applyStore_storeBytes {q : ExMem} {op : StoreOp} {mem : Bytes 30} (heldEnable : BitVec 4)
    (writes : q.cntrlWord.writeMem = true) (store : q.opcode = opStore)
    (kind : StoreOp.ofFunct3 q.funct3 = some op) (aligned : op.size ∣ q.aluVal.toNat) :
    applyStore (wordsOf mem) (memWriteOf heldEnable q) =
      wordsOf (storeBytes mem q.aluVal op.size q.reg2) := by
  rw [memWriteOf, if_pos writes]
  symm
  apply wordsOf_storeBytes (StoreOp.size_fits op) aligned
  intro j below
  have enable := memByteEnable_lane heldEnable store kind aligned j
  have word : readMem (wordsOf mem) q.aluVal = wordsOf mem (wordAddress q.aluVal) := rfl
  rw [slice_mergeBytes _ _ _ (by omega), enable, word]
  simp only [decide_eq_true_eq]
  change (if lane q ≤ j ∧ j < lane q + op.size then _ else _) =
    if lane q ≤ j ∧ j < lane q + op.size then slice 8 q.reg2 (j - lane q) else _
  split_ifs with inside
  · obtain ⟨above, under⟩ := inside
    have byte : j - lane q < op.size := by omega
    have lanes : j = lane q + (j - lane q) := by omega
    have data := wdataOut_lane .rs2OutExMem 0#32 store kind aligned byte
    rw [← lanes] at data
    exact data
  · rfl

theorem stored_eq (heldEnable : BitVec 4) (enc : Encodes p.instrMemRdata i)
    (aligned : s.Aligned i) :
    wordsOf (s.stored i) = applyStore (wordsOf s.mem)
      (memWriteOf heldEnable (executeOnce held heldCmp p (s.operand1 i) (s.operand2 i))) := by
  have contents : executeOnce held heldCmp p (s.operand1 i) (s.operand2 i) = _ :=
    executeOnce_encodes enc
  cases enc with
  | @store op opcode kind =>
    generalize executeOnce held heldCmp p _ _ = e at contents
    have writes : e.cntrlWord.writeMem = true := by rw [contents]; rfl
    have store : e.opcode = opStore := by rw [contents]; rfl
    have funct3 : e.funct3 = funct3Of p.instrMemRdata := by rw [contents]; rfl
    have reg2 : e.reg2 = s.operand2 (.store op (rs1Field p.instrMemRdata)
        (rs2Field p.instrMemRdata) (sImm p.instrMemRdata)) := by rw [contents]; rfl
    have address : e.aluVal = s.operand1 (.store op (rs1Field p.instrMemRdata)
        (rs2Field p.instrMemRdata) (sImm p.instrMemRdata)) + sImm p.instrMemRdata := by
      rw [contents]; rfl
    rw [applyStore_storeBytes heldEnable writes store (funct3 ▸ kind) (address ▸ aligned), reg2,
      address]
    rfl
  | lui op | auipc op | jal op | jalr op | branch op _ | load op _ | arithImm op _
  | arith op _ =>
    rw [contents]
    rfl

end Retire

end Mp4.Machine.Architecture
