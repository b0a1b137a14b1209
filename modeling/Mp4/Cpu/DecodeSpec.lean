import Mathlib.Tactic.Common
import Mp4.Cpu.InstrDecode
import Mp4.Cpu.Isa

/-!
What decode produces for a supported word: one control word for each instruction
format, independent of what the generator held before.
-/

set_option autoImplicit false
set_option relaxedAutoImplicit false

namespace Mp4.Cpu.DecodeSpec

open Mp4.Cpu.Rv32iTypes Mp4.Cpu.InstrDecode Mp4.Cpu.Isa

private theorem iImm_eq (w : Rv32iWord) : immI w = iImm w := by
  ext i hi
  simp only [immI, iImm, BitVec.getElem_signExtend, BitVec.msb_eq_getLsbD_last]
  grind

private theorem sImm_eq (w : Rv32iWord) : immS w = sImm w := by
  ext i hi
  simp only [immS, sImm, BitVec.getElem_signExtend, BitVec.msb_eq_getLsbD_last]
  grind

private theorem bImm_eq (w : Rv32iWord) : immB w = bImm w := by
  ext i hi
  simp only [immB, bImm, BitVec.getElem_signExtend, BitVec.msb_eq_getLsbD_last]
  grind

private theorem jImm_eq (w : Rv32iWord) : immJ w = jImm w := by
  ext i hi
  simp only [immJ, jImm, BitVec.getElem_signExtend, BitVec.msb_eq_getLsbD_last]
  grind

abbrev rdField (w : Rv32iWord) : Rv32iReg := w.extractLsb' 7 5
abbrev rs1Field (w : Rv32iWord) : Rv32iReg := w.extractLsb' 15 5
abbrev rs2Field (w : Rv32iWord) : Rv32iReg := w.extractLsb' 20 5

/-- How a word encodes an instruction, in the immediates of the hardware. -/
inductive Encodes (w : Rv32iWord) : Instr → Prop
  | lui (op : opcodeOf w = opLui) : Encodes w (.lui (rdField w) (uImm w))
  | auipc (op : opcodeOf w = opAuipc) : Encodes w (.auipc (rdField w) (uImm w))
  | jal (op : opcodeOf w = opJal) : Encodes w (.jal (rdField w) (jImm w))
  | jalr (op : opcodeOf w = opJalr) : Encodes w (.jalr (rdField w) (rs1Field w) (iImm w))
  | branch {o : BranchOp} (op : opcodeOf w = opBr)
      (kind : BranchOp.ofFunct3 (funct3Of w) = some o) :
      Encodes w (.branch o (rs1Field w) (rs2Field w) (bImm w))
  | load {o : LoadOp} (op : opcodeOf w = opLoad)
      (kind : LoadOp.ofFunct3 (funct3Of w) = some o) :
      Encodes w (.load o (rdField w) (rs1Field w) (iImm w))
  | store {o : StoreOp} (op : opcodeOf w = opStore)
      (kind : StoreOp.ofFunct3 (funct3Of w) = some o) :
      Encodes w (.store o (rs1Field w) (rs2Field w) (sImm w))
  | arithImm {o : ArithOp} (op : opcodeOf w = opImm)
      (kind : ArithOp.ofImm (funct3Of w) (funct7Of w) = some o) :
      Encodes w (.arithImm o (rdField w) (rs1Field w) (iImm w))
  | arith {o : ArithOp} (op : opcodeOf w = opReg)
      (kind : ArithOp.ofReg (funct3Of w) (funct7Of w) = some o) :
      Encodes w (.arith o (rdField w) (rs1Field w) (rs2Field w))

theorem encodes_of_decode {w : Rv32iWord} {i : Instr} (h : decode w = some i) :
    Encodes w i := by
  simp only [decode, iImm_eq, sImm_eq, bImm_eq, jImm_eq] at h
  split at h
  · cases h; exact .lui ‹_›
  split at h
  · cases h; exact .auipc ‹_›
  split at h
  · cases h; exact .jal ‹_›
  split at h
  · split at h
    · cases h; exact .jalr ‹_›
    · cases h
  split at h
  · obtain ⟨o, kind, rfl⟩ := Option.map_eq_some_iff.mp h
    exact .branch ‹_› kind
  split at h
  · obtain ⟨o, kind, rfl⟩ := Option.map_eq_some_iff.mp h
    exact .load ‹_› kind
  split at h
  · obtain ⟨o, kind, rfl⟩ := Option.map_eq_some_iff.mp h
    exact .store ‹_› kind
  split at h
  · obtain ⟨o, kind, rfl⟩ := Option.map_eq_some_iff.mp h
    exact .arithImm ‹_› kind
  split at h
  · obtain ⟨o, kind, rfl⟩ := Option.map_eq_some_iff.mp h
    exact .arith ‹_› kind
  · cases h

theorem encodes_of_supported {w : Rv32iWord} (h : Supported w) : ∃ i, Encodes w i := by
  obtain ⟨i, hi⟩ := Option.isSome_iff_exists.mp h
  exact ⟨i, encodes_of_decode hi⟩

def loadSel : LoadOp → RegfilemuxSel
  | .lb => .lb
  | .lh => .lh
  | .lw => .lw
  | .lbu => .lbu
  | .lhu => .lhu

/-- The ALU code of each arithmetic operation; the comparisons leave `alu_sll`. -/
def arithAluop : ArithOp → AluOps
  | .add => .aluAdd
  | .sub => .aluSub
  | .sll | .slt | .sltu => .aluSll
  | .xor => .aluXor
  | .srl => .aluSrl
  | .sra => .aluSra
  | .or => .aluOr
  | .and => .aluAnd

def arithSel : ArithOp → RegfilemuxSel
  | .slt | .sltu => .brEn
  | _ => .aluOut

def arithCmpop (f : Funct3) : ArithOp → Funct3
  | .slt => blt
  | .sltu => bltu
  | _ => f

def arithImmCmpmux2 : ArithOp → Cmpmux2Sel
  | .slt | .sltu => .iImm
  | _ => .rs2Out

/-- The control word of an instruction whose word has function code `f`. -/
def formatWord (f : Funct3) : Instr → Rv32iControlWord
  | .lui _ _ =>
      setControlWord opLui .pcPlus4 f .rs2Out (.ofBits f) .rs1Out .uImm false false true .uImm
  | .auipc _ _ =>
      setControlWord opAuipc .pcPlus4 f .rs2Out .aluAdd .pcOut .uImm false false true .aluOut
  | .jal _ _ =>
      setControlWord opJal .aluOut f .rs2Out .aluAdd .pcOut .jImm false false true .pcPlus4
  | .jalr _ _ _ =>
      setControlWord opJalr .aluMod2 f .rs2Out .aluAdd .rs1Out .iImm false false true .pcPlus4
  | .branch _ _ _ _ =>
      setControlWord opBr .cmpOut f .rs2Out .aluAdd .pcOut .bImm false false false .aluOut
  | .load o _ _ _ =>
      setControlWord opLoad .pcPlus4 f .rs2Out .aluAdd .rs1Out .iImm true false true (loadSel o)
  | .store _ _ _ _ =>
      setControlWord opStore .pcPlus4 f .rs2Out .aluAdd .rs1Out .sImm false true false .aluOut
  | .arithImm o _ _ _ =>
      setControlWord opImm .pcPlus4 (arithCmpop f o) (arithImmCmpmux2 o) (arithAluop o)
        .rs1Out .iImm false false true (arithSel o)
  | .arith o _ _ _ =>
      setControlWord opReg .pcPlus4 (arithCmpop f o) .rs2Out (arithAluop o)
        .rs1Out .rs2Out false false true (arithSel o)

def source1 : Instr → Rv32iReg
  | .jalr _ rs1 _ | .branch _ rs1 _ _ | .load _ _ rs1 _ | .store _ rs1 _ _
  | .arithImm _ _ rs1 _ | .arith _ _ rs1 _ => rs1
  | _ => 0#5

def source2 : Instr → Rv32iReg
  | .branch _ _ rs2 _ | .store _ _ rs2 _ | .arith _ _ _ rs2 => rs2
  | _ => 0#5

def dest : Instr → Rv32iReg
  | .lui rd _ | .auipc rd _ | .jal rd _ | .jalr rd _ _ | .load _ rd _ _
  | .arithImm _ rd _ _ | .arith _ rd _ _ => rd
  | _ => 0#5

private theorem funct3_cases (f : Funct3) :
    f = 0#3 ∨ f = 1#3 ∨ f = 2#3 ∨ f = 3#3 ∨ f = 4#3 ∨ f = 5#3 ∨ f = 6#3 ∨ f = 7#3 := by
  revert f
  decide

theorem wordGenerator_load {f : Funct3} {o : LoadOp} (held : Rv32iControlWord) (g : BitVec 7)
    (kind : LoadOp.ofFunct3 f = some o) (rd rs1 : Rv32iReg) (imm : Rv32iWord) :
    wordGenerator held opLoad f g = formatWord f (.load o rd rs1 imm) := by
  unfold LoadOp.ofFunct3 at kind
  split_ifs at kind <;> cases kind <;> subst f <;> rfl

private theorem wordGenerator_arithImm {f : Funct3} {g : BitVec 7} {o : ArithOp}
    (held : Rv32iControlWord) (kind : ArithOp.ofImm f g = some o) (rd rs1 : Rv32iReg)
    (imm : Rv32iWord) :
    wordGenerator held opImm f g = formatWord f (.arithImm o rd rs1 imm) := by
  rcases funct3_cases f with rfl | rfl | rfl | rfl | rfl | rfl | rfl | rfl
  case inr.inl =>
    by_cases h0 : g = 0#7
    · subst h0
      cases kind
      rfl
    · simp [ArithOp.ofImm, h0] at kind
  case inr.inr.inr.inr.inr.inl =>
    by_cases h0 : g = 0#7
    · subst h0
      cases kind
      rfl
    by_cases h1 : g = 0x20#7
    · subst h1
      cases kind
      rfl
    · simp [ArithOp.ofImm, h0, h1] at kind
  all_goals
    cases kind
    rfl

private theorem wordGenerator_arith {f : Funct3} {g : BitVec 7} {o : ArithOp}
    (held : Rv32iControlWord) (kind : ArithOp.ofReg f g = some o) (rd rs1 rs2 : Rv32iReg) :
    wordGenerator held opReg f g = formatWord f (.arith o rd rs1 rs2) := by
  by_cases h0 : g = 0#7
  · subst h0
    rcases funct3_cases f with rfl | rfl | rfl | rfl | rfl | rfl | rfl | rfl <;>
      cases kind <;> rfl
  by_cases h1 : g = 0x20#7
  · subst h1
    rcases funct3_cases f with rfl | rfl | rfl | rfl | rfl | rfl | rfl | rfl <;>
      cases kind <;> rfl
  · simp [ArithOp.ofReg, h0, h1] at kind

theorem controlWordOut_encodes {w : Rv32iWord} {i : Instr} (held : Rv32iControlWord)
    (enc : Encodes w i) : controlWordOut held w = formatWord (funct3Of w) i := by
  unfold controlWordOut
  cases enc with
  | load op kind => rw [op, wordGenerator_load held _ kind]
  | arithImm op kind => rw [op, wordGenerator_arithImm held kind]
  | arith op kind => rw [op, wordGenerator_arith held kind]
  | lui op | auipc op | jal op | jalr op | branch op _ | store op _ =>
    rw [op]
    rfl

theorem rs1Id_encodes {w : Rv32iWord} {i : Instr} (enc : Encodes w i) :
    rs1Id w = source1 i := by
  unfold rs1Id
  cases enc with
  | lui op | auipc op | jal op | jalr op | branch op _ | load op _ | store op _
  | arithImm op _ | arith op _ =>
    rw [op]
    rfl

theorem rs2Id_encodes {w : Rv32iWord} {i : Instr} (enc : Encodes w i) :
    rs2Id w = source2 i := by
  unfold rs2Id
  cases enc with
  | lui op | auipc op | jal op | jalr op | branch op _ | load op _ | store op _
  | arithImm op _ | arith op _ =>
    rw [op]
    rfl

theorem rdOut_encodes {w : Rv32iWord} {i : Instr} (enc : Encodes w i) : rdOut w = dest i := by
  unfold rdOut
  cases enc with
  | lui op | auipc op | jal op | jalr op | branch op _ | load op _ | store op _
  | arithImm op _ | arith op _ =>
    rw [op]
    rfl

theorem opcodeOf_encodes {w : Rv32iWord} {i : Instr} (enc : Encodes w i) :
    opcodeOf w = (formatWord (funct3Of w) i).opcode := by
  cases enc <;> assumption

end Mp4.Cpu.DecodeSpec
