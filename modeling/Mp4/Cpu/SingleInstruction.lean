import Mp4.Cpu.DecodeSpec
import Mp4.Cpu.Execute
import Mp4.Cpu.InstrFetch
import Mp4.Cpu.MemStage

/-!
One supported instruction through decode, execute, memory and write-back with no
forwarding selected: its register write, its memory access and its redirect are
those of the instruction set.
-/

set_option autoImplicit false
set_option relaxedAutoImplicit false

namespace Mp4.Cpu.SingleInstruction

open Mp4.Cpu.Rv32iTypes Mp4.Cpu.PipelineRegs Mp4.Cpu.InstrDecode Mp4.Cpu.Isa
open Mp4.Cpu.DecodeSpec Mp4.Cpu.Execute Mp4.Cpu.MemStage Mp4.Cpu.InstrFetch

def regWriteOf (m : MemWb) : Option (Rv32iReg × Rv32iWord) :=
  if m.cntrlWord.writeReg ∧ m.regDest ≠ 0#5 then some (m.regDest, regfilemuxOut m) else none

/-- The inputs of `ex_mem` for the word in IF/ID, its source values and no forwarding. -/
def executeOnce (held : Rv32iControlWord) (heldCmp : Bool) (q : IfId) (a b : Rv32iWord) :
    ExMem :=
  let d := instrDecode held q a b
  execute heldCmp (noForward d.cntrlWord) d 0#32 0#32

theorem cmp_branch {f : Funct3} {o : BranchOp} (held : Bool) (a b : Rv32iWord)
    (kind : BranchOp.ofFunct3 f = some o) : cmp held f a b = o.taken a b := by
  unfold BranchOp.ofFunct3 at kind
  split_ifs at kind <;> cases kind <;> subst f
  · rfl
  · change (a != b) = decide (a ≠ b)
    grind
  · rfl
  · rfl
  · rfl
  · rfl

private theorem toNat_shamt (b : Rv32iWord) : (b.extractLsb' 0 5).toNat = b.toNat % 32 := by
  simp [BitVec.extractLsb'_toNat]

theorem arith_value (held : Bool) (f : Funct3) (o : ArithOp) (a b : Rv32iWord) :
    (match arithSel o with
      | .brEn => 0#31 ++ BitVec.ofBool (cmp held (arithCmpop f o) a b)
      | _ => alu (arithAluop o) a b) = o.eval a b := by
  cases o
  case sll => exact congrArg (a <<< ·) (toNat_shamt b)
  case srl => exact congrArg (a >>> ·) (toNat_shamt b)
  case sra => exact congrArg a.sshiftRight (toNat_shamt b)
  case slt =>
    change 0#31 ++ BitVec.ofBool (a.slt b) = if a.toInt < b.toInt then 1#32 else 0#32
    cases h : a.slt b <;> simp_all [BitVec.slt]
  case sltu =>
    change 0#31 ++ BitVec.ofBool (a.ult b) = if a.toNat < b.toNat then 1#32 else 0#32
    cases h : a.ult b <;> simp_all [BitVec.ult]
  all_goals rfl

private theorem byteLane_eq (word address : Rv32iWord) :
    byteLane word (address.extractLsb' 0 2) =
      word.extractLsb' (8 * (address.toNat % 4)) 8 := by
  have lane : ∀ l : BitVec 2, byteLane word l = word.extractLsb' (8 * l.toNat) 8 := by
    intro l
    have cases4 : l = 0#2 ∨ l = 1#2 ∨ l = 2#2 ∨ l = 3#2 := by
      revert l
      decide
    rcases cases4 with rfl | rfl | rfl | rfl <;> rfl
  rw [lane]
  simp [BitVec.extractLsb'_toNat]

private theorem halfLane_eq (word address : Rv32iWord) :
    halfLane word (address.getLsbD 1) =
      word.extractLsb' (8 * (address.toNat % 4 - address.toNat % 2)) 16 := by
  have upper : address.getLsbD 1 = decide (address.toNat % 4 - address.toNat % 2 = 2) := by
    rw [BitVec.getLsbD, Nat.testBit_eq_decide_div_mod_eq]
    simp only [decide_eq_decide]
    omega
  have offset : address.toNat % 4 - address.toNat % 2 = 0 ∨
      address.toNat % 4 - address.toNat % 2 = 2 := by omega
  rw [upper]
  rcases offset with h | h <;> simp [h, halfLane]

private theorem clearBit0 (x : Rv32iWord) : x.extractLsb' 1 31 ++ 0#1 = x &&& ~~~1#32 := by
  have mask : ∀ i (hi : i < 32), (~~~1#32)[i] = !(decide (i = 0)) := by decide
  ext i hi
  rw [BitVec.getElem_and, mask]
  grind

theorem load_value (o : LoadOp) (m : MemWb) (sel : m.cntrlWord.regfilemuxSel = loadSel o) :
    regfilemuxOut m = o.value m.aluVal m.rData := by
  cases o <;>
    simp only [regfilemuxOut, sel, loadSel, LoadOp.value, LoadOp.bit, LoadOp.size, byteLane_eq,
      halfLane_eq, Nat.mod_one, Nat.sub_zero]

theorem regWriteOf_true {m : MemWb} (h : m.cntrlWord.writeReg = true) :
    regWriteOf m = writeTo m.regDest (regfilemuxOut m) := by
  by_cases z : m.regDest = 0#5 <;> simp [regWriteOf, writeTo, h, z]

theorem regWriteOf_false {m : MemWb} (h : m.cntrlWord.writeReg = false) :
    regWriteOf m = none := by
  simp [regWriteOf, h]

/-- The access that an instruction in EX/MEM requests from the data cache. -/
def accessOf (e : ExMem) : Option Access :=
  if e.cntrlWord.readMem then some (.read e.aluVal)
  else if e.cntrlWord.writeMem then some (.write e.aluVal)
  else none

section Correctness

variable {held : Rv32iControlWord} {heldCmp : Bool} {q : IfId} {a b : Rv32iWord} {i : Instr}

theorem executeOnce_encodes (enc : Encodes q.instrMemRdata i) :
    executeOnce held heldCmp q a b =
      execute heldCmp (noForward (formatWord (funct3Of q.instrMemRdata) i))
        { instrDecode held q a b with
          regDest := dest i
          cntrlWord := formatWord (funct3Of q.instrMemRdata) i
          opcode := (formatWord (funct3Of q.instrMemRdata) i).opcode } 0#32 0#32 := by
  simp only [executeOnce, instrDecode, controlWordOut_encodes held enc, rdOut_encodes enc,
    opcodeOf_encodes enc]

theorem regWrite_correct (rData : Rv32iWord) (enc : Encodes q.instrMemRdata i) :
    regWriteOf (memStage (executeOnce held heldCmp q a b) rData) =
      i.regWrite q.pcReg a b rData := by
  rw [executeOnce_encodes enc]
  cases enc with
  | lui op | auipc op | jal op | jalr op => exact regWriteOf_true rfl
  | branch op kind | store op kind => exact regWriteOf_false rfl
  | load op kind =>
    rw [regWriteOf_true rfl, load_value _ _ rfl]
    rfl
  | @arithImm o op kind =>
    rw [regWriteOf_true rfl]
    refine congrArg (writeTo _) ?_
    rw [← arith_value heldCmp (funct3Of q.instrMemRdata)]
    cases o <;> rfl
  | @arith o op kind =>
    rw [regWriteOf_true rfl]
    refine congrArg (writeTo _) ?_
    rw [← arith_value heldCmp (funct3Of q.instrMemRdata)]
    cases o <;> rfl

theorem access_correct (enc : Encodes q.instrMemRdata i) :
    accessOf (executeOnce held heldCmp q a b) = i.access a := by
  rw [executeOnce_encodes enc]
  cases enc <;> rfl

theorem cmpVal_correct {op : BranchOp} {rs1 rs2 : Rv32iReg} {imm : Rv32iWord}
    (enc : Encodes q.instrMemRdata (.branch op rs1 rs2 imm)) :
    (executeOnce held heldCmp q a b).cmpVal = op.taken a b := by
  rw [executeOnce_encodes enc]
  cases enc with
  | branch _ kind => exact cmp_branch heldCmp a b kind

private theorem staticNtPredictor_branch (heldChk : Checker) (outcome pred : Bool) :
    staticNtPredictor heldChk outcome opBr pred =
      { mispredicted := pred && !outcome
        flush := pred != outcome
        updateBrPredTaken := outcome } := by
  cases outcome <;> cases pred <;> rfl

theorem opcode_correct (enc : Encodes q.instrMemRdata i) :
    (executeOnce held heldCmp q a b).opcode = (formatWord (funct3Of q.instrMemRdata) i).opcode := by
  rw [executeOnce_encodes enc]
  rfl

theorem flush_correct (heldChk : Checker) (enc : Encodes q.instrMemRdata i) :
    let e := executeOnce held heldCmp q a b
    (staticNtPredictor heldChk e.cmpVal e.opcode e.brPredTaken).flush =
      i.redirects q.brPredTaken a b := by
  intro e
  have op : e.opcode = _ := opcode_correct enc
  rw [op]
  cases i with
  | branch o rs1 rs2 imm =>
    rw [show e.cmpVal = _ from cmpVal_correct enc]
    exact congrArg Checker.flush (staticNtPredictor_branch heldChk _ _)
  | _ => rfl

theorem pcSelOut_correct (heldChk : Checker) (fetchPred : Bool) (pcreg brPredPc : Rv32iWord)
    (heldMispredicted : i.isJump → heldChk.mispredicted = false)
    (enc : Encodes q.instrMemRdata i) (redirects : i.redirects q.brPredTaken a b) :
    let e := executeOnce held heldCmp q a b
    let checker := staticNtPredictor heldChk e.cmpVal e.opcode e.brPredTaken
    pcSelOut fetchPred checker.flush checker.mispredicted e.cntrlWord.pcmuxSel pcreg e.aluVal
      brPredPc e.regPc = i.successor q.pcReg a b := by
  intro e checker
  have flush : checker.flush = true := (flush_correct heldChk enc).trans redirects
  have op : e.opcode = _ := opcode_correct enc
  have shape : e = _ := executeOnce_encodes enc
  cases enc with
  | jal _ =>
    have mis : checker.mispredicted = false := by
      simp only [checker]
      rw [op]
      exact heldMispredicted rfl
    rw [flush, mis, shape]
    rfl
  | jalr _ =>
    have mis : checker.mispredicted = false := by
      simp only [checker]
      rw [op]
      exact heldMispredicted rfl
    rw [flush, mis, shape]
    exact clearBit0 _
  | @branch o opc kind =>
    have outcome : e.cmpVal = o.taken a b := cmpVal_correct (.branch opc kind)
    have answer : checker = staticNtPredictor heldChk (o.taken a b) opBr e.brPredTaken := by
      simp only [checker]
      rw [op, outcome]
      rfl
    rw [staticNtPredictor_branch] at answer
    -- a taken branch was predicted not taken, and the other way round
    cases taken : o.taken a b with
    | true =>
      have pred : q.brPredTaken = false := by
        simpa [Instr.redirects, taken] using redirects
      replace pred : e.brPredTaken = false := pred
      rw [flush, answer, taken, pred, shape]
      simp only [Instr.successor, taken]
      rfl
    | false =>
      have pred : q.brPredTaken = true := by
        simpa [Instr.redirects, taken] using redirects
      replace pred : e.brPredTaken = true := pred
      rw [answer, taken, pred, shape]
      simp only [Instr.successor, taken]
      rfl
  | lui _ | auipc _ | load _ _ | store _ _ | arithImm _ _ | arith _ _ => cases redirects

end Correctness

/-- A supported word, passed once through decode, execute, memory and write-back,
writes the register, requests the access and redirects fetch as the instruction
set says; a redirect selects the architectural successor. -/
theorem single_instruction_isa (held : Rv32iControlWord) (heldCmp : Bool) (heldChk : Checker)
    (q : IfId) (a b rData : Rv32iWord) (fetchPred : Bool) (pcreg brPredPc : Rv32iWord)
    (i : Instr) (supported : decode q.instrMemRdata = some i)
    (heldMispredicted : i.isJump → heldChk.mispredicted = false) :
    let e := executeOnce held heldCmp q a b
    let checker := staticNtPredictor heldChk e.cmpVal e.opcode e.brPredTaken
    regWriteOf (memStage e rData) = i.regWrite q.pcReg a b rData ∧
    accessOf e = i.access a ∧
    checker.flush = i.redirects q.brPredTaken a b ∧
    (i.redirects q.brPredTaken a b →
      pcSelOut fetchPred checker.flush checker.mispredicted e.cntrlWord.pcmuxSel pcreg e.aluVal
        brPredPc e.regPc = i.successor q.pcReg a b) := by
  have enc := encodes_of_decode supported
  exact ⟨regWrite_correct rData enc, access_correct enc, flush_correct heldChk enc,
    pcSelOut_correct heldChk fetchPred pcreg brPredPc heldMispredicted enc⟩

theorem single_instruction_isa_beq :
    let q : IfId := ⟨0x80#32, 0x00208863#32, true, 0x90#32⟩
    let e := executeOnce zeroControlWord false q 1#32 2#32
    let checker := staticNtPredictor ⟨false, false, false⟩ e.cmpVal e.opcode e.brPredTaken
    checker.flush = true ∧
    pcSelOut false checker.flush checker.mispredicted e.cntrlWord.pcmuxSel 0x94#32 e.aluVal
      0x90#32 e.regPc = 0x84#32 := by
  have result := single_instruction_isa zeroControlWord false ⟨false, false, false⟩
    ⟨0x80#32, 0x00208863#32, true, 0x90#32⟩ 1#32 2#32 0#32 false 0x94#32 0x90#32
    (.branch .beq 1#5 2#5 16#32) (by decide) (by decide)
  exact ⟨result.2.2.1, result.2.2.2 (by decide)⟩

end Mp4.Cpu.SingleInstruction
