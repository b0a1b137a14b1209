import Mp4.Cpu.Pipeline
import Mp4.Cpu.SingleInstruction

/-!
What the forwarding unit achieves: the instruction in ID/EX executes as it would
alone on the operand values that the bypasses deliver.
-/

set_option autoImplicit false
set_option relaxedAutoImplicit false

namespace Mp4.Cpu.Forwarding

open Mp4.Cpu.Rv32iTypes Mp4.Cpu.PipelineRegs Mp4.Cpu.InstrDecode Mp4.Cpu.Isa Mp4.Cpu.DecodeSpec
open Mp4.Cpu.Execute Mp4.Cpu.MemStage Mp4.Cpu.SingleInstruction Mp4.Cpu.Pipeline

/-- Equal in every field that a later stage uses: the store data matters for
stores only, the comparison for branches and set-less-than only. -/
structure Agrees (e r : ExMem) : Prop where
  regPc : e.regPc = r.regPc
  uImm : e.uImm = r.uImm
  reg2 : e.opcode = opStore → e.reg2 = r.reg2
  regDest : e.regDest = r.regDest
  cmpVal : e.opcode = opBr ∨ e.cntrlWord.regfilemuxSel = .brEn → e.cmpVal = r.cmpVal
  aluVal : e.aluVal = r.aluVal
  cntrlWord : e.cntrlWord = r.cntrlWord
  funct3 : e.funct3 = r.funct3
  opcode : e.opcode = r.opcode
  rs2Id : e.rs2Id = r.rs2Id
  brPredTaken : e.brPredTaken = r.brPredTaken

namespace Agrees

variable {e r : ExMem}

theorem trans {d : ExMem} (h : Agrees d e) (h' : Agrees e r) : Agrees d r where
  regPc := h.regPc.trans h'.regPc
  uImm := h.uImm.trans h'.uImm
  reg2 st := (h.reg2 st).trans (h'.reg2 (h.opcode ▸ st))
  regDest := h.regDest.trans h'.regDest
  cmpVal relevant := (h.cmpVal relevant).trans (h'.cmpVal (h.opcode ▸ h.cntrlWord ▸ relevant))
  aluVal := h.aluVal.trans h'.aluVal
  cntrlWord := h.cntrlWord.trans h'.cntrlWord
  funct3 := h.funct3.trans h'.funct3
  opcode := h.opcode.trans h'.opcode
  rs2Id := h.rs2Id.trans h'.rs2Id
  brPredTaken := h.brPredTaken.trans h'.brPredTaken

private theorem regfilemuxOut_eq (h : Agrees e r) (rData : Rv32iWord) :
    regfilemuxOut (memStage e rData) = regfilemuxOut (memStage r rData) := by
  have cmp := h.cmpVal
  cases sel : r.cntrlWord.regfilemuxSel <;>
    simp_all [regfilemuxOut, memStage, h.cntrlWord, h.aluVal, h.uImm, h.regPc]

theorem regWriteOf_eq (h : Agrees e r) (rData : Rv32iWord) :
    regWriteOf (memStage e rData) = regWriteOf (memStage r rData) := by
  have writeReg : (memStage e rData).cntrlWord.writeReg = r.cntrlWord.writeReg :=
    congrArg _ h.cntrlWord
  cases w : r.cntrlWord.writeReg with
  | true =>
    rw [regWriteOf_true (writeReg.trans w), regWriteOf_true w, h.regfilemuxOut_eq]
    exact congrArg (writeTo · _) h.regDest
  | false => rw [regWriteOf_false (writeReg.trans w), regWriteOf_false w]

theorem checker_eq (h : Agrees e r) (held : Checker) :
    staticNtPredictor held e.cmpVal e.opcode e.brPredTaken =
      staticNtPredictor held r.cmpVal r.opcode r.brPredTaken := by
  by_cases br : e.opcode = opBr
  · rw [h.cmpVal (.inl br), h.opcode, h.brPredTaken]
  · simp only [staticNtPredictor, ← h.opcode, br, if_false]

theorem memByteEnable_eq (h : Agrees e r) (held : BitVec 4) :
    memByteEnable held e = memByteEnable held r := by
  simp only [memByteEnable, h.opcode, h.funct3, h.aluVal]

theorem wdataOut_eq (h : Agrees e r) (store : e.opcode = opStore) (sel : CachemuxSel)
    (rDataMemWb : Rv32iWord) : wdataOut sel rDataMemWb e = wdataOut sel rDataMemWb r := by
  simp only [wdataOut, ← h.opcode, store, h.funct3, h.aluVal, h.reg2 store]

end Agrees

section Bypass

variable (c : Core)

/-- The value that a source id of ID/EX gets: EX/MEM first, then MEM/WB, then the
value read in decode. -/
def bypass (src : Rv32iReg) (read : Rv32iWord) : Rv32iWord :=
  if src ≠ 0#5 ∧ c.exMem.cntrlWord.writeReg ∧ c.exMem.regDest = src then forwardingVal c.exMem
  else if src ≠ 0#5 ∧ c.memWb.cntrlWord.writeReg ∧ c.memWb.regDest = src then c.regfilemux
  else read

variable {c}

private theorem alumux1_bypass (sel : c.idEx.cntrlWord.alumux1Sel = .rs1Out)
    (op : c.idEx.cntrlWord.opcode ≠ opBr) :
    alumux1 c.forward.alumux1Sel c.idEx (forwardingVal c.exMem) c.regfilemux =
      bypass c c.idEx.rs1Id c.idEx.reg1 := by
  simp only [Core.forward, forwardingUnit, bypass, sel]
  split_ifs <;> simp_all [alumux1]

private theorem alumux1_own (unforwarded : c.idEx.rs1Id = 0#5 ∨ c.idEx.cntrlWord.opcode = opBr) :
    c.forward.alumux1Sel = c.idEx.cntrlWord.alumux1Sel := by
  simp only [Core.forward, forwardingUnit]
  split_ifs <;> simp_all

private theorem alumux2_bypass (sel : c.idEx.cntrlWord.alumux2Sel = .rs2Out)
    (notBr : c.idEx.cntrlWord.opcode ≠ opBr) (notStore : c.idEx.cntrlWord.opcode ≠ opStore) :
    alumux2 c.forward.alumux2Sel c.idEx (forwardingVal c.exMem) c.regfilemux =
      bypass c c.idEx.rs2Id c.idEx.reg2 := by
  simp only [Core.forward, forwardingUnit, bypass, sel]
  split_ifs <;> simp_all [alumux2]

private theorem alumux2_own (unforwarded : c.idEx.rs2Id = 0#5 ∨ c.idEx.cntrlWord.opcode = opBr ∨
    c.idEx.cntrlWord.opcode = opStore) :
    c.forward.alumux2Sel = c.idEx.cntrlWord.alumux2Sel := by
  simp only [Core.forward, forwardingUnit]
  split_ifs <;> simp_all

private theorem cmpmux1_bypass :
    cmpmux1 c.forward.cmpmux1Sel c.idEx (forwardingVal c.exMem) c.regfilemux =
      bypass c c.idEx.rs1Id c.idEx.reg1 := by
  simp only [Core.forward, forwardingUnit, bypass]
  split_ifs <;> simp_all [cmpmux1]

private theorem cmpmux2_bypass (sel : c.idEx.cntrlWord.cmpmux2Sel = .rs2Out) :
    cmpmux2 c.forward.cmpmux2Sel c.idEx (forwardingVal c.exMem) c.regfilemux =
      bypass c c.idEx.rs2Id c.idEx.reg2 := by
  simp only [Core.forward, forwardingUnit, bypass, sel]
  split_ifs <;> simp_all [cmpmux2]

private theorem cmpmux2_own (unforwarded : c.idEx.rs2Id = 0#5) :
    c.forward.cmpmux2Sel = c.idEx.cntrlWord.cmpmux2Sel := by
  simp only [Core.forward, forwardingUnit]
  split_ifs <;> simp_all

/-- The store-data bypass tests no write enable of MEM/WB, so it needs that a
destination there is written. -/
private theorem rs2passmux_bypass (op : c.idEx.cntrlWord.opcode = opStore)
    (writes : c.memWb.regDest ≠ 0#5 → c.memWb.cntrlWord.writeReg) :
    rs2passmux c.forward.rs2passmuxSel c.idEx (forwardingVal c.exMem) c.regfilemux =
      bypass c c.idEx.rs2Id c.idEx.reg2 := by
  simp only [Core.forward, forwardingUnit, bypass, op]
  split_ifs <;> simp_all [rs2passmux]

end Bypass

private theorem formatWord_alumux1 (f : Funct3) (i : Instr) :
    (formatWord f i).alumux1Sel = .rs1Out ∧ (formatWord f i).opcode ≠ opBr ∨
    (formatWord f i).alumux1Sel = .pcOut ∧
      (source1 i = 0#5 ∨ (formatWord f i).opcode = opBr) := by
  cases i <;> simp [formatWord, setControlWord, source1] <;> decide

private theorem formatWord_alumux2 (f : Funct3) (i : Instr) :
    (formatWord f i).alumux2Sel = .rs2Out ∧ (formatWord f i).opcode ≠ opBr ∧
      (formatWord f i).opcode ≠ opStore ∨
    (formatWord f i).alumux2Sel ∈ [.iImm, .uImm, .bImm, .sImm, .jImm] ∧
      (source2 i = 0#5 ∨ (formatWord f i).opcode = opBr ∨
        (formatWord f i).opcode = opStore) := by
  cases i <;> simp [formatWord, setControlWord, source2]
  decide

private theorem formatWord_cmpmux2 (f : Funct3) (i : Instr) :
    (formatWord f i).cmpmux2Sel = .rs2Out ∨
    (formatWord f i).cmpmux2Sel = .iImm ∧ source2 i = 0#5 := by
  cases i with
  | arithImm o _ _ _ => cases o <;> simp [formatWord, setControlWord, source2, arithImmCmpmux2]
  | _ => exact .inl rfl

private theorem cmp_arith {f : Funct3} {o : ArithOp} {held held' : Bool} {a b : Rv32iWord}
    (op : Rv32iOpcode) (relevant : op = opBr ∨ arithSel o = .brEn)
    (notBr : op ≠ opBr) :
    cmp held (arithCmpop f o) a b = cmp held' (arithCmpop f o) a b := by
  rcases relevant with br | sel
  · exact absurd br notBr
  · cases o <;> first | rfl | cases sel

theorem executeOnce_agrees {q : IfId} {i : Instr} (held held' : Rv32iControlWord)
    (heldCmp heldCmp' : Bool) (a b : Rv32iWord) (enc : Encodes q.instrMemRdata i) :
    Agrees (executeOnce held heldCmp q a b) (executeOnce held' heldCmp' q a b) := by
  rw [executeOnce_encodes enc, executeOnce_encodes enc]
  refine
    { regPc := rfl, uImm := rfl, reg2 := fun _ => rfl, regDest := rfl, aluVal := rfl,
      cntrlWord := rfl, funct3 := rfl, opcode := rfl, rs2Id := rfl, brPredTaken := rfl,
      cmpVal := fun relevant => ?_ }
  cases enc with
  | branch op kind => exact (cmp_branch _ a b kind).trans (cmp_branch _ a b kind).symm
  | @arithImm o op kind => exact cmp_arith opImm relevant (by decide)
  | @arith o op kind => exact cmp_arith opReg relevant (by decide)
  | @load o op kind =>
    rcases relevant with br | sel
    · cases br
    · cases o <;> cases sel
  | lui _ | auipc _ | jal _ | jalr _ | store _ _ =>
    rcases relevant with br | sel
    · cases br
    · cases sel

theorem executed_agrees {c : Core} {held : Rv32iControlWord} {q : IfId} {i : Instr}
    {a b x y : Rv32iWord} (held' : Rv32iControlWord) (enc : Encodes q.instrMemRdata i)
    (idEx : c.idEx = instrDecode held q x y)
    (writes : c.memWb.regDest ≠ 0#5 → c.memWb.cntrlWord.writeReg)
    (operand1 : bypass c (source1 i) x = a) (operand2 : bypass c (source2 i) y = b) :
    Agrees c.executed (executeOnce held' c.heldBrEn q a b) := by
  have id1 : c.idEx.rs1Id = source1 i := by rw [idEx]; exact rs1Id_encodes enc
  have id2 : c.idEx.rs2Id = source2 i := by rw [idEx]; exact rs2Id_encodes enc
  have word : c.idEx.cntrlWord = formatWord (funct3Of q.instrMemRdata) i := by
    rw [idEx]; exact controlWordOut_encodes held enc
  have word' : (instrDecode held' q a b).cntrlWord = c.idEx.cntrlWord :=
    (controlWordOut_encodes held' enc).trans word.symm
  have opcode : c.idEx.opcode = c.idEx.cntrlWord.opcode := by
    rw [word, ← opcodeOf_encodes enc, idEx]
    rfl
  have from1 : bypass c c.idEx.rs1Id c.idEx.reg1 = a := by rw [id1, idEx]; exact operand1
  have from2 : bypass c c.idEx.rs2Id c.idEx.reg2 = b := by rw [id2, idEx]; exact operand2
  have alu1 : alumux1 c.forward.alumux1Sel c.idEx (forwardingVal c.exMem) c.regfilemux =
      alumux1 c.idEx.cntrlWord.alumux1Sel (instrDecode held' q a b) 0#32 0#32 := by
    rcases formatWord_alumux1 (funct3Of q.instrMemRdata) i with ⟨sel, op⟩ | ⟨sel, own⟩ <;>
      rw [← word] at sel
    · rw [alumux1_bypass sel (word ▸ op), from1, sel]
      rfl
    · rw [alumux1_own (by rwa [id1, word]), sel, idEx]
      rfl
  have alu2 : alumux2 c.forward.alumux2Sel c.idEx (forwardingVal c.exMem) c.regfilemux =
      alumux2 c.idEx.cntrlWord.alumux2Sel (instrDecode held' q a b) 0#32 0#32 := by
    rcases formatWord_alumux2 (funct3Of q.instrMemRdata) i with ⟨sel, br, st⟩ | ⟨sel, own⟩ <;>
      rw [← word] at sel
    · rw [alumux2_bypass sel (word ▸ br) (word ▸ st), from2, sel]
      rfl
    · rw [alumux2_own (by rwa [id2, word])]
      simp only [List.mem_cons, List.not_mem_nil, or_false] at sel
      rcases sel with sel | sel | sel | sel | sel <;> rw [sel, idEx] <;> rfl
  have cmp1 : cmpmux1 c.forward.cmpmux1Sel c.idEx (forwardingVal c.exMem) c.regfilemux = a := by
    rw [cmpmux1_bypass, from1]
  have cmp2 : cmpmux2 c.forward.cmpmux2Sel c.idEx (forwardingVal c.exMem) c.regfilemux =
      cmpmux2 c.idEx.cntrlWord.cmpmux2Sel (instrDecode held' q a b) 0#32 0#32 := by
    rcases formatWord_cmpmux2 (funct3Of q.instrMemRdata) i with sel | ⟨sel, own⟩ <;>
      rw [← word] at sel
    · rw [cmpmux2_bypass sel, from2, sel]
      rfl
    · rw [cmpmux2_own (id2.trans own), sel, idEx]
      rfl
  refine
    { regPc := by rw [Core.executed, idEx]; rfl
      uImm := by rw [Core.executed, idEx]; rfl
      reg2 := fun st => ?_
      regDest := by rw [Core.executed, idEx]; rfl
      cmpVal := fun _ => ?_
      aluVal := ?_
      cntrlWord := word'.symm
      funct3 := by rw [Core.executed, idEx]; rfl
      opcode := by rw [Core.executed, idEx]; rfl
      rs2Id := by rw [Core.executed, idEx]; rfl
      brPredTaken := by rw [Core.executed, idEx]; rfl }
  · exact (rs2passmux_bypass (opcode ▸ st) writes).trans from2
  · simp only [Core.executed, execute, executeOnce, cmp1, cmp2, word']
    rfl
  · simp only [Core.executed, execute, executeOnce, alu1, alu2, word']
    rfl

end Mp4.Cpu.Forwarding
